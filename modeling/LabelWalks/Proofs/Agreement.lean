/-
  LabelWalks.Proofs.Agreement
  ───────────────────────────
  **THREE WAYS TO GO THROUGH A GRAPH.**

  A census, a search between all nodes and an index of all nodes expand walks in
  ways of their own, from a label, from the start nodes of a label, from one node.
  They meet the same nodes and the same labels all the same: one of them comes to its
  end just when the others do, and then they have the same paths.

    • `GraphView.Listed` — walks stay among the nodes of the graph,
    • `exists_search_all_iff`, `Delivers.failed_eq_nil_iff` — who comes to the end,
    • `counted_iff`, `mem_search_all_iff`, `exists_suffix_iff` — whose paths these are,
    • `engines_agree` — the three together.
-/
import LabelWalks.Proofs.Census.Completion
import LabelWalks.Proofs.HubIndex.Session
import LabelWalks.Proofs.Search.Meaning
import LabelWalks.Proofs.Search.Shortcut

namespace LabelWalks

variable {g : GraphView} {m : Mapping} {length : PathLength} {nodes : List NodeId}

/-! ## §1. Graphs that know their nodes. -/

/-- Every node that has a label is among the nodes of the graph. -/
def GraphView.Listed (g : GraphView) : Prop :=
  ∀ v label, g.labelOf v = some label → v ∈ g.nodeIds

/-- A network lists the nodes that are registered, and these are the nodes with labels. -/
theorem Network.listed_view (n : Network) : n.view.Listed := by
  intro v label hlabel
  have hget : n.labels[v]? = some label := hlabel
  show v ∈ n.labels.keys
  rw [Std.ExtTreeMap.mem_keys, Std.ExtTreeMap.mem_iff_isSome_getElem?, hget]
  rfl

/-- **A walk stays among the nodes of the graph.** -/
theorem IsWalk.endOf_mem {v : NodeId} {as : List Arrival} (hwalk : IsWalk g m v as)
    (hlisted : g.Listed) (hv : v ∈ g.nodeIds) : endOf v as ∈ g.nodeIds := by
  induction hwalk with
  | stay v => exact hv
  | step first rest ih =>
      obtain ⟨entries, -, label, -, -, hnode⟩ := first
      obtain ⟨label', hlabel⟩ := Mapping.exists_labelOf_of_indexOfNode hnode
      exact ih (hlisted _ _ hlabel)

/-! ## §2. Who comes to the end. -/

/-- **A search between all nodes** comes to its end just when all of them have labels and the way
is clear from each. -/
theorem exists_search_all_iff (hnodes : ∀ v, v ∈ nodes ↔ v ∈ g.nodeIds) {sink : Sink}
    (hsink : sink.Accepting) :
    (∃ paths, (search g m .empty length nodes nodes sink).2 = .ok paths) ↔
      Labelled g m g.nodeIds ∧ ∀ v ∈ g.nodeIds, Clear g m nowhere length.hops v := by
  have hexact : HubIndex.empty.Exact g m length := HubIndex.exact_empty
  have hclear : ∀ v, Clear g m HubIndex.empty.contains length.hops v ↔
      Clear g m nowhere length.hops v := by
    intro v
    constructor
    · intro h
      exact h.mono (fun w _ => HubIndex.contains_empty w) (Nat.le_refl _)
    · intro h
      exact h.mono (fun _ _ => rfl) (Nat.le_refl _)
  rw [exists_search_iff hsink hexact.even hexact.renderable]
  unfold Labelled
  simp only [hnodes, hclear]
  constructor
  · intro h
    exact h.2
  · intro h
    exact ⟨h.1, h⟩

/-- Nobody fails in a call just when each node has a suffix map. -/
theorem HubIndex.Delivers.failed_eq_nil_iff {sink : Sink} {result : Sink × Except Fault Report}
    {report : Report} (h : Delivers g m length nodes sink result report) :
    report.failed = [] ↔ ∀ v ∈ nodes, ∃ map, suffixesFrom g m v length = .ok map := by
  rw [List.eq_nil_iff_forall_not_mem]
  refine forall_congr' fun v => ?_
  rw [h.mem_failed_iff, not_and]
  refine imp_congr_right fun _ => ?_
  cases suffixesFrom g m v length with
  | ok map => simp [Except.isOk, Except.toBool]
  | error halt => simp [Except.isOk, Except.toBool]

/-- **A call for all nodes** reports no failed node just when all of them have labels and the way
is clear from each. -/
theorem HubIndex.Builds.nobody_failed_iff (hnodes : ∀ v, v ∈ nodes ↔ v ∈ g.nodeIds) {workers : Nat}
    {sink : Sink} (hsink : sink.Accepting) {result : Sink × Except Fault Report}
    (h : Builds g m length nodes workers sink result) :
    (∃ report, result.2 = .ok report ∧ report.failed = []) ↔
      Labelled g m g.nodeIds ∧ ∀ v ∈ g.nodeIds, Clear g m nowhere length.hops v := by
  obtain ⟨report, hdelivers⟩ := h.exists_delivers hsink
  have hreport : (∃ report, result.2 = .ok report ∧ report.failed = []) ↔ report.failed = [] := by
    rw [hdelivers.answer]
    simp
  rw [hreport, hdelivers.failed_eq_nil_iff]
  unfold Labelled
  simp only [exists_suffixesFrom_iff, hnodes]
  constructor
  · intro h
    exact ⟨fun v hv => (h v hv).1, fun v hv => (h v hv).2⟩
  · intro h v hv
    exact ⟨h.1 v hv, h.2 v hv⟩

/-! ## §3. Whose paths these are. -/

/-- **The paths of a census**, by the hops of the walks. -/
theorem counted_iff {p : MetaPath} :
    Counted g m length p ↔ ∃ v ∈ g.nodeIds, ∃ as, IsWalk g m v as ∧ as.length ≤ length.hops
      ∧ traceOf g m v as = some p.tokens := by
  have hhops : length.hops = length.nodes - 1 := rfl
  have hpos := length.pos
  constructor
  · intro h
    obtain ⟨hlen, v, hv, as, hwalk, htrace⟩ := h
    obtain ⟨label, -, htokens⟩ := traceOf_eq_some_iff.1 htrace
    rw [htokens, List.length_cons, length_hopTokens] at hlen
    exact ⟨v, hv, as, hwalk, by omega, htrace⟩
  · intro h
    obtain ⟨v, hv, as, hwalk, hlen, htrace⟩ := h
    obtain ⟨label, -, htokens⟩ := traceOf_eq_some_iff.1 htrace
    refine ⟨?_, v, hv, as, hwalk, htrace⟩
    rw [htokens, List.length_cons, length_hopTokens]
    omega

/-- **The paths of a search between all nodes** are those of a census. -/
theorem mem_search_all_iff (hlisted : g.Listed) (hnodes : ∀ v, v ∈ nodes ↔ v ∈ g.nodeIds)
    {sink : Sink} {paths : PathSet}
    (h : (search g m .empty length nodes nodes sink).2 = .ok paths) {p : MetaPath} :
    p ∈ paths ↔ Counted g m length p := by
  obtain ⟨wanted, hwanted, hpaths⟩ := mem_search h
  rw [hpaths, found_iff hwanted, walked_or_spliced_empty, counted_iff]
  constructor
  · intro h
    obtain ⟨v, hv, as, hwalk, hlen, -, htrace⟩ := h
    exact ⟨v, (hnodes v).1 hv, as, hwalk, hlen, htrace⟩
  · intro h
    obtain ⟨v, hv, as, hwalk, hlen, htrace⟩ := h
    exact ⟨v, (hnodes v).2 hv, as, hwalk, hlen, (hnodes _).2 (hwalk.endOf_mem hlisted hv), htrace⟩

/-- **The suffixes of all nodes**, each after the label of its node, are the paths of a census. -/
theorem exists_suffix_iff (hclear : ∀ v ∈ g.nodeIds, Clear g m nowhere length.hops v)
    {p : MetaPath} :
    (∃ v ∈ g.nodeIds, ∃ label map s, m.indexOfNode g v = .ok label
        ∧ suffixesFrom g m v length = .ok map ∧ s ∈ map ∧ p.tokens = label :: s) ↔
      Counted g m length p := by
  rw [counted_iff]
  constructor
  · intro h
    obtain ⟨v, hv, label, map, s, hlabel, hmap, hs, htokens⟩ := h
    obtain ⟨ends, hends⟩ := Option.isSome_iff_exists.1
      (Std.ExtTreeMap.mem_iff_isSome_getElem?.1 hs)
    obtain ⟨hlen, ⟨w, hw⟩, hmem⟩ := (getElem?_suffixesFrom hmap).1 hends
    -- some walk adds the suffix
    obtain ⟨as, hwalk, rfl, -⟩ := (hmem w).1 hw
    rw [length_hopTokens] at hlen
    exact ⟨v, hv, as, hwalk, by omega, traceOf_eq_some_iff.2 ⟨label, hlabel, htokens⟩⟩
  · intro h
    obtain ⟨v, hv, as, hwalk, hlen, htrace⟩ := h
    obtain ⟨label, hlabel, htokens⟩ := traceOf_eq_some_iff.1 htrace
    obtain ⟨map, hmap⟩ := exists_suffixesFrom_iff.2 ⟨⟨label, hlabel⟩, hclear v hv⟩
    obtain ⟨ends, hends, -⟩ := exists_getElem?_suffixesFrom hmap hwalk hlen
    refine ⟨v, hv, label, map, hopTokens as, hlabel, hmap, ?_, htokens⟩
    rw [Std.ExtTreeMap.mem_iff_isSome_getElem?, hends]
    rfl

/-! ## §4. All three. -/

/-- **The three agree.**  A census of a network comes to its end just when a search between all
nodes does, and just when a call that indexes all nodes reports no failed one, under whichever
schedule it ran; and then the census, the search and the suffix maps have the same paths. -/
theorem engines_agree (n : Network) (m : Mapping) (length : PathLength) {nodes : List NodeId}
    (hnodes : ∀ v, v ∈ nodes ↔ v ∈ n.nodeIds) {sink₁ sink₂ sink₃ : Sink}
    (hsink₁ : sink₁.Accepting) (hsink₂ : sink₂.Accepting) (hsink₃ : sink₃.Accepting) :
    ((∃ table, (writeCensus n.view m length sink₁).2 = .ok table) ↔
      ∃ paths, (search n.view m .empty length nodes nodes sink₂).2 = .ok paths)
    ∧ (∀ workers, (∃ result, HubIndex.Builds n.view m length nodes workers sink₃ result)
      ∧ ∀ result, HubIndex.Builds n.view m length nodes workers sink₃ result →
        ((∃ paths, (search n.view m .empty length nodes nodes sink₂).2 = .ok paths) ↔
          ∃ report, result.2 = .ok report ∧ report.failed = []))
    ∧ ∀ table paths, (writeCensus n.view m length sink₁).2 = .ok table →
      (search n.view m .empty length nodes nodes sink₂).2 = .ok paths →
      (∀ p, p ∈ table ↔ p ∈ paths)
        ∧ ∀ p, p ∈ table ↔ ∃ v ∈ nodes, ∃ label map s, m.indexOfNode n.view v = .ok label
          ∧ suffixesFrom n.view m v length = .ok map ∧ s ∈ map ∧ p.tokens = label :: s := by
  have hnodes : ∀ v, v ∈ nodes ↔ v ∈ n.view.nodeIds := hnodes
  refine ⟨?_, ?_, ?_⟩
  · rw [exists_writeCensus_iff hsink₁, exists_search_all_iff hnodes hsink₂]
  · intro workers
    refine ⟨HubIndex.exists_builds n.view m length nodes workers sink₃, fun result hbuilds => ?_⟩
    rw [exists_search_all_iff hnodes hsink₂, hbuilds.nobody_failed_iff hnodes hsink₃]
  · intro table paths htable hpaths
    have hclear := ((exists_writeCensus_iff hsink₁).1 ⟨table, htable⟩).2
    have hcounted : ∀ p, p ∈ table ↔ Counted n.view m length p := by
      intro p
      rw [Std.ExtTreeMap.mem_iff_isSome_getElem?, Option.isSome_iff_exists]
      simp only [getElem?_census (writeCensus_eq_ok htable), exists_and_left, exists_eq, and_true]
    constructor
    · intro p
      rw [hcounted, mem_search_all_iff n.listed_view hnodes hpaths]
    · intro p
      rw [hcounted, ← exists_suffix_iff hclear]
      simp only [hnodes]

/-- The nodes of `twins` in some order.  The census comes to its end, so the others do, and the
path over an edge is found by the search because it is in the table. -/
theorem engines_agree_twins :
    ∃ table paths result report,
      (writeCensus twins.view twinLabels ⟨2, by decide, by decide⟩ .unlimited).2 = .ok table
      ∧ (search twins.view twinLabels .empty ⟨2, by decide, by decide⟩ [2, 1, 2] [2, 1, 2]
        .unlimited).2 = .ok paths
      ∧ HubIndex.Builds twins.view twinLabels ⟨2, by decide, by decide⟩ [2, 1, 2] 1 .unlimited result
      ∧ result.2 = .ok report ∧ report.failed = []
      ∧ ⟨[0, 0, 1], rfl⟩ ∈ table ∧ ⟨[0, 0, 1], rfl⟩ ∈ paths := by
  have hnodes : ∀ v, v ∈ ([2, 1, 2] : List NodeId) ↔ v ∈ twins.nodeIds := by
    have hids : twins.nodeIds = [1, 2] := by decide +kernel
    intro v
    rw [hids]
    simp only [List.mem_cons, List.not_mem_nil, or_false]
    tauto
  obtain ⟨hsearch, hbuild, hpaths⟩ := engines_agree twins twinLabels ⟨2, by decide, by decide⟩ hnodes
    Sink.unlimited_accepting Sink.unlimited_accepting Sink.unlimited_accepting
  have hok : (writeCensus twins.view twinLabels ⟨2, by decide, by decide⟩
      .unlimited).2.toOption.any (fun table => table.contains ⟨[0, 0, 1], rfl⟩) = true := by
    decide +kernel
  obtain ⟨table, htable, hmem⟩ := (Option.any_eq_true _ _).1 hok
  have htable := toOption_eq_some_iff.1 htable
  have hmem : (⟨[0, 0, 1], rfl⟩ : MetaPath) ∈ table := hmem
  obtain ⟨paths, hfound⟩ := hsearch.1 ⟨table, htable⟩
  obtain ⟨⟨result, hresult⟩, hreports⟩ := hbuild 1
  obtain ⟨report, hreport, hfailed⟩ := (hreports result hresult).1 ⟨paths, hfound⟩
  exact ⟨table, paths, result, report, htable, hfound, hresult, hreport, hfailed, hmem,
    ((hpaths table paths htable hfound).1 _).1 hmem⟩

end LabelWalks
