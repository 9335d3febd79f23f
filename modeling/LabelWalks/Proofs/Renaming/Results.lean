/-
  LabelWalks.Proofs.Renaming.Results
  ──────────────────────────────────
  **NO RESULT DEPENDS ON NODE IDS.**

  A census, a suffix map and a search see ids and lists in some order all the time,
  and their faults may name an id.  What they give in the end does not show it: on
  a renamed graph they come to their end when they did before, and give the same
  table, the same suffixes and the same paths.

    • `Renamed.census_eq_ok_iff`, `Renamed.writeCensus_eq` — the census,
    • `Renamed.suffixesFrom_eq_ok_iff` — the suffix map of a node,
    • `Renamed.finds_iff`, `Renamed.search_eq_ok_iff` — the search,
    • `Renamed.same_results` — all three.
-/
import LabelWalks.Proofs.Census.Completion
import LabelWalks.Proofs.Renaming.Walk

namespace LabelWalks

/-! ## §1. Sets, suffix maps and indexes under other ids. -/

/-- The nodes under their other ids. -/
def NodeSet.rename (s : NodeId → NodeId) (nodes : NodeSet) : NodeSet :=
  .ofList (nodes.toList.map s)

/-- The suffix map with its ends under their other ids. -/
def SuffixMap.rename (s : NodeId → NodeId) (map : SuffixMap) : SuffixMap :=
  map.map fun _ ends => NodeSet.rename s ends

/-- The index with its nodes and the ends of their suffixes under their other ids. -/
def HubIndex.rename (s : NodeId → NodeId) (index : HubIndex) : HubIndex :=
  ⟨(index.entries.toList.map fun row => (s row.1, row.2.rename s)).foldl
    (fun entries row => entries.insert row.1 row.2) ∅⟩

section
variable {s : NodeId → NodeId}

theorem NodeSet.mem_rename {nodes : NodeSet} {u : NodeId} :
    u ∈ nodes.rename s ↔ ∃ v ∈ nodes, s v = u := by
  unfold rename
  rw [mem_ofList_iff, List.mem_map]
  simp only [Std.ExtTreeSet.mem_toList]

theorem NodeSet.meets_rename {nodes wanted wanted' : NodeSet}
    (hwanted : ∀ w, s w ∈ wanted' ↔ w ∈ wanted) :
    (nodes.rename s).meets wanted' = nodes.meets wanted := by
  rw [Bool.eq_iff_iff, meets_iff, meets_iff]
  constructor
  · intro h
    obtain ⟨u, hu, hmeets⟩ := h
    obtain ⟨v, hv, rfl⟩ := mem_rename.1 hu
    exact ⟨v, hv, (hwanted v).1 hmeets⟩
  · intro h
    obtain ⟨v, hv, hmeets⟩ := h
    exact ⟨s v, mem_rename.2 ⟨v, hv, rfl⟩, (hwanted v).2 hmeets⟩

theorem SuffixMap.getElem?_rename (map : SuffixMap) (t : Suffix) :
    (map.rename s)[t]? = map[t]?.map (NodeSet.rename s) :=
  Std.ExtTreeMap.getElem?_map

theorem SuffixMap.getElem?_rename_eq_some_iff {map : SuffixMap} {t : Suffix} {ends' : NodeSet} :
    (map.rename s)[t]? = some ends' ↔ ∃ ends, map[t]? = some ends ∧ NodeSet.rename s ends = ends' := by
  rw [getElem?_rename, Option.map_eq_some_iff]

theorem HubIndex.get?_rename (hs : Function.Injective s) (index : HubIndex) (v : NodeId) :
    (index.rename s).get? (s v) = (index.get? v).map (SuffixMap.rename s) := by
  -- different nodes keep different ids, so no entry is written over
  have hkeys : ((index.entries.toList.map fun row => (s row.1, SuffixMap.rename s row.2)).map
      Prod.fst).Nodup := by
    have hids : (index.entries.toList.map Prod.fst).Nodup := by
      rw [Std.ExtTreeMap.map_fst_toList_eq_keys]
      exact Std.ExtTreeMap.nodup_keys
    have hmap := hids.map hs
    rw [List.map_map] at hmap ⊢
    exact hmap
  refine Option.ext fun map' => ?_
  show ((index.entries.toList.map fun row => (s row.1, SuffixMap.rename s row.2)).foldl
    (fun entries row => entries.insert row.1 row.2) (∅ : Std.ExtTreeMap NodeId SuffixMap))[s v]?
      = some map' ↔ _
  rw [← Std.ExtTreeMap.mem_toList_iff_getElem?_eq_some,
    (toList_foldl_insert_perm hkeys).mem_iff, List.mem_map, Option.map_eq_some_iff]
  constructor
  · intro h
    obtain ⟨⟨u, map⟩, hrow, hsame⟩ := h
    obtain ⟨hid, hmap⟩ := Prod.mk.inj hsame
    have hid : u = v := hs hid
    subst hid
    exact ⟨map, Std.ExtTreeMap.mem_toList_iff_getElem?_eq_some.1 hrow, hmap⟩
  · intro h
    obtain ⟨map, hmap, hsame⟩ := h
    exact ⟨(v, map), Std.ExtTreeMap.mem_toList_iff_getElem?_eq_some.2 hmap, by rw [hsame]⟩

theorem HubIndex.contains_rename (hs : Function.Injective s) (index : HubIndex) (v : NodeId) :
    (index.rename s).contains (s v) = index.contains v := by
  rw [Bool.eq_iff_iff, contains_iff, contains_iff, get?_rename hs]
  simp [Option.map_eq_some_iff]

end

namespace Renamed

variable {s : NodeId → NodeId} {g g' : GraphView} {m : Mapping} {length : PathLength}
  (h : Renamed s g g')
include h

/-! ## §2. The census. -/

theorem labelled_iff (nodes : List NodeId) :
    Labelled g' m (nodes.map s) ↔ Labelled g m nodes := by
  unfold Labelled
  simp only [List.forall_mem_map, h.indexOfNode_eq_ok_iff]

theorem labelled_nodeIds_iff : Labelled g' m g'.nodeIds ↔ Labelled g m g.nodeIds := by
  rw [← h.labelled_iff]
  unfold Labelled
  simp only [h.nodeIds.mem_iff]

theorem clear_nowhere_iff {hops : Nat} (v : NodeId) :
    Clear g' m nowhere hops (s v) ↔ Clear g m nowhere hops v :=
  h.clear_iff (fun _ => rfl) v

/-- **The paths that are counted** are the same. -/
theorem counted_iff {p : MetaPath} : Counted g' m length p ↔ Counted g m length p := by
  unfold Counted
  refine and_congr_right fun _ => ?_
  constructor
  · intro hcounted
    obtain ⟨u, hu, bs, hwalk, htrace⟩ := hcounted
    obtain ⟨v, hv, rfl⟩ := h.mem_nodeIds_iff.1 hu
    obtain ⟨as, hback, rfl⟩ := (h.exists_isWalk_iff v).1 hwalk
    rw [h.traceOf_map_rename] at htrace
    exact ⟨v, hv, as, hback, htrace⟩
  · intro hcounted
    obtain ⟨v, hv, as, hwalk, htrace⟩ := hcounted
    refine ⟨s v, h.mem_nodeIds_iff.2 ⟨v, hv, rfl⟩, as.map (Arrival.rename s),
      (h.exists_isWalk_iff v).2 ⟨as, hwalk, rfl⟩, ?_⟩
    rw [h.traceOf_map_rename]
    exact htrace

theorem exists_census_iff :
    (∃ table, census g' m length = .ok table) ↔ ∃ table, census g m length = .ok table := by
  rw [LabelWalks.exists_census_iff, LabelWalks.exists_census_iff, h.labelled_nodeIds_iff]
  refine and_congr_right fun _ => ?_
  constructor
  · intro hclear v hv
    exact (h.clear_nowhere_iff v).1 (hclear (s v) (h.mem_nodeIds_iff.2 ⟨v, hv, rfl⟩))
  · intro hclear u hu
    obtain ⟨v, hv, rfl⟩ := h.mem_nodeIds_iff.1 hu
    exact (h.clear_nowhere_iff v).2 (hclear v hv)

/-- Tables of the two graphs are the same table. -/
theorem census_unique {table table' : Census} (hok : census g m length = .ok table)
    (hok' : census g' m length = .ok table') : table' = table := by
  refine Std.ExtTreeMap.ext_getElem? fun p => Option.ext fun n => ?_
  rw [getElem?_census hok, getElem?_census hok', h.counted_iff, h.walkCount_eq]

theorem census_eq_ok_iff {table : Census} :
    census g' m length = .ok table ↔ census g m length = .ok table := by
  constructor
  · intro hok'
    obtain ⟨table', hok⟩ := h.exists_census_iff.1 ⟨table, hok'⟩
    rw [h.census_unique hok hok']
    exact hok
  · intro hok
    obtain ⟨table', hok'⟩ := h.exists_census_iff.2 ⟨table, hok⟩
    rw [h.census_unique hok hok'] at hok'
    exact hok'

/-- **What is written** is the same, into whatever sink; only the words of a fault may differ. -/
theorem writeCensus_eq (sink : Sink) :
    (writeCensus g' m length sink).1 = (writeCensus g m length sink).1
      ∧ ∀ table, (writeCensus g' m length sink).2 = .ok table ↔
        (writeCensus g m length sink).2 = .ok table := by
  cases hok : census g m length with
  | ok table =>
      have hsame : writeCensus g' m length sink = writeCensus g m length sink := by
        unfold writeCensus
        rw [h.census_eq_ok_iff.2 hok, hok]
      rw [hsame]
      exact ⟨rfl, fun _ => Iff.rfl⟩
  | error fault =>
      obtain ⟨fault', hfault'⟩ : ∃ fault', census g' m length = .error fault' := by
        cases hok' : census g' m length with
        | ok table =>
            rw [h.census_eq_ok_iff.1 hok'] at hok
            cases hok
        | error fault' => exact ⟨fault', rfl⟩
      have hwrite : writeCensus g m length sink = (sink, .error fault) := by
        unfold writeCensus
        rw [hok]
        rfl
      have hwrite' : writeCensus g' m length sink = (sink, .error fault') := by
        unfold writeCensus
        rw [hfault']
        rfl
      rw [hwrite, hwrite']
      simp

/-! ## §3. Suffix maps. -/

theorem exists_suffixesFrom_iff (v : NodeId) :
    (∃ map', suffixesFrom g' m (s v) length = .ok map') ↔
      ∃ map, suffixesFrom g m v length = .ok map := by
  rw [LabelWalks.exists_suffixesFrom_iff, LabelWalks.exists_suffixesFrom_iff, h.clear_nowhere_iff]
  simp only [h.indexOfNode_eq_ok_iff]

/-- The suffix map of the renamed node is the renamed suffix map. -/
theorem suffixesFrom_unique {v : NodeId} {map map' : SuffixMap}
    (hmap : suffixesFrom g m v length = .ok map)
    (hmap' : suffixesFrom g' m (s v) length = .ok map') : map' = map.rename s := by
  refine Std.ExtTreeMap.ext_getElem? fun t => Option.ext fun ends' => ?_
  rw [getElem?_suffixesFrom hmap', SuffixMap.getElem?_rename_eq_some_iff]
  simp only [h.endsAt_iff]
  constructor
  · intro hends'
    obtain ⟨hlen, ⟨u, hu⟩, hmem'⟩ := hends'
    -- some walk with this suffix is known to the other map as well
    obtain ⟨w, ⟨as, hwalk, rfl, -⟩, -⟩ := (hmem' u).1 hu
    rw [length_hopTokens] at hlen
    obtain ⟨ends, hends, -⟩ := exists_getElem?_suffixesFrom hmap hwalk (by omega)
    obtain ⟨-, -, hmem⟩ := (getElem?_suffixesFrom hmap).1 hends
    refine ⟨ends, hends, Std.ExtTreeSet.ext_mem fun u => ?_⟩
    rw [NodeSet.mem_rename, hmem']
    simp only [hmem]
  · intro hends'
    obtain ⟨ends, hends, rfl⟩ := hends'
    obtain ⟨hlen, ⟨w, hw⟩, hmem⟩ := (getElem?_suffixesFrom hmap).1 hends
    refine ⟨hlen, ⟨s w, NodeSet.mem_rename.2 ⟨w, hw, rfl⟩⟩, fun u => ?_⟩
    rw [NodeSet.mem_rename]
    simp only [hmem]

/-- **The suffix map of a node** has the same suffixes, each with its ends renamed. -/
theorem suffixesFrom_eq_ok_iff (v : NodeId) {map' : SuffixMap} :
    suffixesFrom g' m (s v) length = .ok map' ↔
      ∃ map, suffixesFrom g m v length = .ok map ∧ map' = map.rename s := by
  constructor
  · intro hmap'
    obtain ⟨map, hmap⟩ := (h.exists_suffixesFrom_iff v).1 ⟨map', hmap'⟩
    exact ⟨map, hmap, h.suffixesFrom_unique hmap hmap'⟩
  · intro hsome
    obtain ⟨map, hmap, rfl⟩ := hsome
    obtain ⟨map', hmap'⟩ := (h.exists_suffixesFrom_iff v).2 ⟨map, hmap⟩
    rw [h.suffixesFrom_unique hmap hmap'] at hmap'
    exact hmap'

/-! ## §4. The search. -/

section
variable {index : HubIndex} {wanted wanted' : NodeSet}
  (hwanted : ∀ w, s w ∈ wanted' ↔ w ∈ wanted)
include hwanted

/-- What is found from a node is found from it under its other id. -/
theorem finds_rename {hops : Nat} {v : NodeId} {t : Suffix}
    (hfinds : Finds g m index wanted hops v t) :
    Finds g' m (index.rename s) wanted' hops (s v) t := by
  induction hfinds with
  | @arrive hops v a first walked here =>
      have ha := (h.arrives_iff v).2 ⟨a, first, rfl⟩
      show Finds g' m (index.rename s) wanted' (hops + 1) (s v) (a.rename s).hop.tokens
      refine .arrive ha ?_ ((hwanted a.node).2 here)
      rw [Arrival.node_rename, HubIndex.contains_rename h.injective]
      exact walked
  | @takeOver hops v a map t ends first indexed row fits there =>
      have ha := (h.arrives_iff v).2 ⟨a, first, rfl⟩
      have hmap : (index.rename s).get? (a.rename s).node = some (map.rename s) := by
        rw [Arrival.node_rename, HubIndex.get?_rename h.injective, indexed]
        rfl
      have hends : (map.rename s)[t]? = some (NodeSet.rename s ends) :=
        SuffixMap.getElem?_rename_eq_some_iff.2 ⟨ends, row, rfl⟩
      show Finds g' m (index.rename s) wanted' (hops + 1) (s v) ((a.rename s).hop.tokens ++ t)
      refine .takeOver ha hmap hends fits ?_
      rw [NodeSet.meets_rename hwanted]
      exact there
  | @walkOn hops v a t first walked rest ih =>
      have ha := (h.arrives_iff v).2 ⟨a, first, rfl⟩
      show Finds g' m (index.rename s) wanted' (hops + 1) (s v) ((a.rename s).hop.tokens ++ t)
      refine .walkOn ha ?_ ih
      rw [Arrival.node_rename, HubIndex.contains_rename h.injective]
      exact walked

/-- And nothing else is found there. -/
theorem finds_of_rename {hops : Nat} {v : NodeId} {t : Suffix}
    (hfinds : Finds g' m (index.rename s) wanted' hops (s v) t) :
    Finds g m index wanted hops v t := by
  -- every node that is come to has an id under which the first graph knows it
  generalize hu : s v = u at hfinds
  induction hfinds generalizing v with
  | @arrive hops u b first walked here =>
      subst hu
      obtain ⟨a, ha, rfl⟩ := (h.arrives_iff v).1 first
      rw [Arrival.node_rename, HubIndex.contains_rename h.injective] at walked
      show Finds g m index wanted (hops + 1) v a.hop.tokens
      exact .arrive ha walked ((hwanted a.node).1 here)
  | @takeOver hops u b map' t ends' first indexed row fits there =>
      subst hu
      obtain ⟨a, ha, rfl⟩ := (h.arrives_iff v).1 first
      rw [Arrival.node_rename, HubIndex.get?_rename h.injective, Option.map_eq_some_iff] at indexed
      obtain ⟨map, hmap, rfl⟩ := indexed
      obtain ⟨ends, hends, rfl⟩ := SuffixMap.getElem?_rename_eq_some_iff.1 row
      rw [NodeSet.meets_rename hwanted] at there
      show Finds g m index wanted (hops + 1) v (a.hop.tokens ++ t)
      exact .takeOver ha hmap hends fits there
  | @walkOn hops u b t first walked rest ih =>
      subst hu
      obtain ⟨a, ha, rfl⟩ := (h.arrives_iff v).1 first
      rw [Arrival.node_rename, HubIndex.contains_rename h.injective] at walked
      show Finds g m index wanted (hops + 1) v (a.hop.tokens ++ t)
      exact .walkOn ha walked (ih rfl)

/-- **What is found from a node** is the same. -/
theorem finds_iff (hops : Nat) (v : NodeId) {t : Suffix} :
    Finds g' m (index.rename s) wanted' hops (s v) t ↔ Finds g m index wanted hops v t := by
  constructor
  · exact h.finds_of_rename hwanted
  · exact h.finds_rename hwanted

theorem searchable_iff (hops : Nat) (v : NodeId) :
    Searchable g' m (index.rename s) wanted' hops (s v) ↔ Searchable g m index wanted hops v := by
  unfold Searchable
  simp only [h.finds_iff hwanted]
  exact and_congr_left fun _ => h.clear_iff (HubIndex.contains_rename h.injective index) v

theorem found_iff {starts : List NodeId} {p : MetaPath} :
    Found g' m (index.rename s) wanted' length (starts.map s) p ↔
      Found g m index wanted length starts p := by
  unfold Found
  simp only [List.mem_map, exists_exists_and_eq_and, h.indexOfNode_eq_ok_iff, h.finds_iff hwanted,
    hwanted]

end

/-- The renamed end nodes are wanted when the end nodes are. -/
theorem mem_wanted_iff {ends : List NodeId} {wanted wanted' : NodeSet}
    (hwanted : ∀ v, v ∈ wanted ↔ v ∈ ends) (hwanted' : ∀ v, v ∈ wanted' ↔ v ∈ ends.map s)
    (w : NodeId) : s w ∈ wanted' ↔ w ∈ wanted := by
  rw [hwanted, hwanted', List.mem_map_of_injective h.injective]

/-- **The paths of a search** are the same when both searches come to their end. -/
theorem search_unique {index : HubIndex} {starts ends : List NodeId} {sink sink' : Sink}
    {paths paths' : PathSet} (hok : (search g m index length starts ends sink).2 = .ok paths)
    (hok' : (search g' m (index.rename s) length (starts.map s) (ends.map s) sink').2
      = .ok paths') : paths' = paths := by
  obtain ⟨wanted, hwanted, hmem⟩ := mem_search hok
  obtain ⟨wanted', hwanted', hmem'⟩ := mem_search hok'
  refine Std.ExtTreeSet.ext_mem fun p => ?_
  rw [hmem, hmem', h.found_iff (h.mem_wanted_iff hwanted hwanted')]

/-- **A search comes to its end** in both graphs or in neither. -/
theorem exists_search_iff {index : HubIndex} {starts ends : List NodeId} {sink : Sink}
    {bound : Option Nat} (hroom : sink.HasRoom bound) :
    (∃ paths, (search g' m (index.rename s) length (starts.map s) (ends.map s) sink).2 = .ok paths) ↔
      ∃ paths, (search g m index length starts ends sink).2 = .ok paths := by
  have hmem : ∀ (nodes : List NodeId) v, v ∈ (Std.ExtTreeSet.ofList nodes : NodeSet) ↔ v ∈ nodes :=
    fun _ _ => mem_ofList_iff
  have hwanted := h.mem_wanted_iff (hmem ends) (hmem (ends.map s))
  rw [exists_search_iff_fits hroom (hmem ends), exists_search_iff_fits hroom (hmem (ends.map s)),
    h.labelled_iff, h.labelled_iff]
  unfold LinesFit
  simp only [List.forall_mem_map, h.searchable_iff hwanted, h.found_iff hwanted]

theorem search_eq_ok_iff {index : HubIndex} {starts ends : List NodeId} {sink : Sink}
    {bound : Option Nat} (hroom : sink.HasRoom bound) {paths : PathSet} :
    (search g' m (index.rename s) length (starts.map s) (ends.map s) sink).2 = .ok paths ↔
      (search g m index length starts ends sink).2 = .ok paths := by
  constructor
  · intro hok'
    obtain ⟨paths', hok⟩ := (h.exists_search_iff hroom).1 ⟨paths, hok'⟩
    rw [h.search_unique hok hok']
    exact hok
  · intro hok
    obtain ⟨paths', hok'⟩ := (h.exists_search_iff hroom).2 ⟨paths, hok⟩
    rw [h.search_unique hok hok'] at hok'
    exact hok'

/-! ## §5. All three. -/

/-- **No result depends on node ids**, nor on the order of any list.  Between a graph and a
renamed one, a census into any sink writes the same text and gives the same table, or a fault in
both; the suffix map of a node has the same suffixes with their ends renamed; and a search between
renamed nodes with a renamed index gives the same set of paths, or a fault in both as long as the
sink's room does not depend on the order of the lines. -/
theorem same_results (m : Mapping) (length : PathLength) :
    (∀ sink, (writeCensus g' m length sink).1 = (writeCensus g m length sink).1
      ∧ ∀ table, (writeCensus g' m length sink).2 = .ok table ↔
        (writeCensus g m length sink).2 = .ok table)
    ∧ (∀ v map', suffixesFrom g' m (s v) length = .ok map' ↔
      ∃ map, suffixesFrom g m v length = .ok map ∧ map' = map.rename s)
    ∧ ∀ (index : HubIndex) (starts ends : List NodeId),
      (∀ sink bound, sink.HasRoom bound → ∀ paths,
        (search g' m (index.rename s) length (starts.map s) (ends.map s) sink).2 = .ok paths ↔
          (search g m index length starts ends sink).2 = .ok paths)
      ∧ ∀ sink sink' paths paths',
        (search g m index length starts ends sink).2 = .ok paths →
        (search g' m (index.rename s) length (starts.map s) (ends.map s) sink').2 = .ok paths' →
        paths' = paths := by
  refine ⟨h.writeCensus_eq, fun v map' => h.suffixesFrom_eq_ok_iff v, fun index starts ends => ?_⟩
  refine ⟨fun sink bound hroom paths => h.search_eq_ok_iff hroom, ?_⟩
  intro sink sink' paths paths' hok hok'
  exact h.search_unique hok hok'

end Renamed

/-- The graph under other ids, which `back` takes back, with its lists turned round. -/
def GraphView.rename (g : GraphView) (s back : NodeId → NodeId) : GraphView where
  nodeIds := (g.nodeIds.map s).reverse
  labelOf v := g.labelOf (back v)
  nodeLabels := g.nodeLabels
  edgeLabels := g.edgeLabels
  adjacentNodes v := (g.adjacentNodes (back v)).map fun ws => (ws.map s).reverse
  edgeLabel v w := g.edgeLabel (back v) (back w)
  degree v := g.degree (back v)
  adjacentEdges v := (g.adjacentEdges (back v)).map fun entries =>
    (entries.map fun entry => (s entry.1, entry.2)).reverse

theorem renamed_rename {s back : NodeId → NodeId} (hback : Function.LeftInverse back s)
    (g : GraphView) : Renamed s g (g.rename s back) where
  injective := hback.injective
  nodeIds := List.reverse_perm _
  labelOf v := by
    show g.labelOf (back (s v)) = g.labelOf v
    rw [hback v]
  edges v entries hadj := by
    refine ⟨(entries.map fun entry => (s entry.1, entry.2)).reverse, ?_, List.reverse_perm _⟩
    show (g.adjacentEdges (back (s v))).map _ = _
    rw [hback v, hadj]
    rfl
  breaks v breakdown hadj := by
    refine ⟨breakdown, ?_⟩
    show (g.adjacentEdges (back (s v))).map _ = _
    rw [hback v, hadj]
    rfl

/-- `twins` with 10 added to each id: the census comes to its end on `twins`, so it has the same
table here, and the search between the renamed nodes finds the same paths. -/
theorem Renamed.same_results_twins :
    ∃ table paths, (writeCensus twins.view twinLabels ⟨2, by decide, by decide⟩ .unlimited).2
        = .ok table
      ∧ (writeCensus (twins.view.rename (· + 10) (· - 10)) twinLabels ⟨2, by decide, by decide⟩
        .unlimited).2 = .ok table
      ∧ (search twins.view twinLabels .empty ⟨2, by decide, by decide⟩ [1] [2] .unlimited).2
        = .ok paths
      ∧ (search (twins.view.rename (· + 10) (· - 10)) twinLabels (HubIndex.empty.rename (· + 10))
        ⟨2, by decide, by decide⟩ [11] [12] .unlimited).2 = .ok paths := by
  have hback : Function.LeftInverse (fun v : NodeId => v - 10) fun v => v + 10 :=
    fun v => UInt64.add_sub_cancel v 10
  obtain ⟨hcensus, -, hsearch⟩ :=
    (renamed_rename hback twins.view).same_results twinLabels ⟨2, by decide, by decide⟩
  have hok : (writeCensus twins.view twinLabels ⟨2, by decide, by decide⟩
      .unlimited).2.toOption.isSome = true := by decide +kernel
  have hfound : (search twins.view twinLabels .empty ⟨2, by decide, by decide⟩ [1] [2]
      .unlimited).2.toOption.isSome = true := by decide +kernel
  obtain ⟨table, htable⟩ := Option.isSome_iff_exists.1 hok
  obtain ⟨paths, hpaths⟩ := Option.isSome_iff_exists.1 hfound
  have htable := toOption_eq_some_iff.1 htable
  have hpaths := toOption_eq_some_iff.1 hpaths
  exact ⟨table, paths, htable, ((hcensus .unlimited).2 table).2 htable, hpaths,
    ((hsearch .empty [1] [2]).1 .unlimited none Sink.unlimited_accepting.hasRoom paths).2 hpaths⟩

end LabelWalks
