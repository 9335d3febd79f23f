/-
  LabelWalks.Proofs.Reversal.Results
  ──────────────────────────────────
  **THE SAME RESULTS FROM THE OTHER END.**

  A census only goes forward, and a search expands its start nodes, only looks at
  its end nodes, and cuts a walk at the first indexed node, which is another one
  when the walk is taken from its other end.  None of this shows in the results:
  a network under a direction and under the reverse of it has the same counts for
  a path and its reversal, and a search the other way round finds the same paths
  backwards, with whichever indexes.

    • `Built.census_reverse` — counts,
    • `Precomputed` — an index that was written for a list of nodes and read,
    • `mem_search_exact_iff` — walks, not indexes, decide what a search finds,
    • `Built.search_reverse` — paths.
-/
import LabelWalks.Proofs.Reversal.Network

namespace LabelWalks

variable {g g' : GraphView} {m : Mapping}

/-! ## §1. The census. -/

/-- A census of the one graph and one of the other have the same counts. -/
theorem Mirrored.getElem?_reverse (h : Mirrored g g') {length : PathLength} {sink sink' : Sink}
    {table table' : Census} (htable : (writeCensus g m length sink).2 = .ok table)
    (htable' : (writeCensus g' m length sink').2 = .ok table') (p : MetaPath) :
    table[p]? = table'[p.reverse]? := by
  refine Option.ext fun n => ?_
  rw [getElem?_census (writeCensus_eq_ok htable), getElem?_census (writeCensus_eq_ok htable'),
    h.counted_reverse, h.walkCount_reverse]

/-- **Counts do not depend on the end from which a walk is taken.**  When the census of a
network succeeds under a direction and under the reverse of it, a path is in the one table just
when its reversal is in the other, with the same count; a network open in both directions has
the same count for a path and its reversal. -/
theorem Network.Built.census_reverse {n : Network} (h : n.Built) (m : Mapping) (length : PathLength)
    (d : Direction) {sink sink' : Sink} {table table' : Census}
    (htable : (writeCensus (n.withDirection d).view m length sink).2 = .ok table)
    (htable' : (writeCensus (n.withDirection d.reverse).view m length sink').2 = .ok table') :
    (∀ p : MetaPath, p ∈ table ↔ p.reverse ∈ table')
      ∧ (∀ p : MetaPath, table[p]? = table'[p.reverse]?)
      ∧ (d = .both → ∀ p : MetaPath, table[p]? = table[p.reverse]?) := by
  have hget : ∀ p : MetaPath, table[p]? = table'[p.reverse]? := fun p =>
    (h.mirrored d).getElem?_reverse htable htable' p
  refine ⟨fun p => ?_, hget, fun hboth p => ?_⟩
  · rw [Std.ExtTreeMap.mem_iff_isSome_getElem?, Std.ExtTreeMap.mem_iff_isSome_getElem?, hget]
  · -- both ways is its own reverse, so the one table stands for the other
    subst hboth
    exact (h.mirrored .both).getElem?_reverse htable htable p

/-- The two walks of `twins` over an edge from node 1 to node 2, and back against the edges. -/
theorem Network.Built.census_reverse_twins :
    ∃ table table', (writeCensus (twins.withDirection .outgoing).view twinLabels
        ⟨2, by decide, by decide⟩ .unlimited).2 = .ok table
      ∧ (writeCensus (twins.withDirection .incoming).view twinLabels ⟨2, by decide, by decide⟩
        .unlimited).2 = .ok table'
      ∧ table[(⟨[0, 0, 1], rfl⟩ : MetaPath)]? = some 2
      ∧ table'[(⟨[1, 0, 0], rfl⟩ : MetaPath)]? = some 2 := by
  have hok : (writeCensus (twins.withDirection .outgoing).view twinLabels
      ⟨2, by decide, by decide⟩ .unlimited).2.toOption.any
        (fun table => table[(⟨[0, 0, 1], rfl⟩ : MetaPath)]? = some 2) = true := by decide +kernel
  have hok' : (writeCensus (twins.withDirection .incoming).view twinLabels
      ⟨2, by decide, by decide⟩ .unlimited).2.toOption.isSome = true := by decide +kernel
  obtain ⟨table, htable, hcount⟩ := (Option.any_eq_true _ _).1 hok
  obtain ⟨table', htable'⟩ := Option.isSome_iff_exists.1 hok'
  have htable := toOption_eq_some_iff.1 htable
  have htable' := toOption_eq_some_iff.1 htable'
  have hcount : table[(⟨[0, 0, 1], rfl⟩ : MetaPath)]? = some 2 := of_decide_eq_true hcount
  obtain ⟨-, hget, -⟩ := Network.built_twins.census_reverse twinLabels ⟨2, by decide, by decide⟩
    .outgoing htable htable'
  refine ⟨table, table', htable, htable', hcount, ?_⟩
  rw [← hcount, hget]
  rfl

/-! ## §2. Indexes that were written and read. -/

/-- **A call on a new sink** leaves a text that is read as an index of exact suffix maps. -/
theorem HubIndex.Builds.exists_exact {reach : PathLength} {nodes : List NodeId} {workers : Nat}
    {sink : Sink} {result : Sink × Except Fault Report} (hsink : sink.Accepting)
    (hempty : sink.written = "") (hbuilds : Builds g m reach nodes workers sink result) :
    ∃ index, ofText m result.1.written = .ok index ∧ index.Exact g m reach := by
  obtain ⟨index, hread, hindex⟩ := hbuilds.exists_ofText hsink hempty
  exact ⟨index, hread, fun v map hmap => ((hindex v map).1 hmap).2⟩

/-- The index is what is read from the text that some call for the nodes has written, with some
number of workers and under some schedule. -/
def HubIndex.Precomputed (g : GraphView) (m : Mapping) (reach : PathLength) (nodes : List NodeId)
    (index : HubIndex) : Prop :=
  ∃ (workers : Nat) (sink : Sink) (result : Sink × Except Fault Report),
    sink.Accepting ∧ sink.written = "" ∧ Builds g m reach nodes workers sink result
      ∧ ofText m result.1.written = .ok index

/-- There is one for any nodes. -/
theorem HubIndex.exists_precomputed (g : GraphView) (m : Mapping) (reach : PathLength)
    (nodes : List NodeId) : ∃ index, Precomputed g m reach nodes index := by
  obtain ⟨result, hbuilds⟩ := exists_builds g m reach nodes 1 .unlimited
  obtain ⟨index, hread, -⟩ := hbuilds.exists_exact Sink.unlimited_accepting rfl
  exact ⟨index, 1, .unlimited, result, Sink.unlimited_accepting, rfl, hbuilds, hread⟩

/-- It has the suffix maps of its nodes. -/
theorem HubIndex.Precomputed.exact {reach : PathLength} {nodes : List NodeId} {index : HubIndex}
    (h : Precomputed g m reach nodes index) : index.Exact g m reach := by
  obtain ⟨workers, sink, result, hsink, hempty, hbuilds, hread⟩ := h
  obtain ⟨index', hread', hexact⟩ := hbuilds.exists_exact hsink hempty
  rw [hread] at hread'
  injection hread' with hsame
  rw [hsame]
  exact hexact

/-! ## §3. The search. -/

section
variable {index index' : HubIndex} {length reach reach' : PathLength} {starts ends : List NodeId}
  {sink sink' : Sink} {paths paths' : PathSet}

/-- **With exact suffix maps that reach far enough** a search finds the label sequences of all
walks within the length. -/
theorem mem_search_exact_iff (hexact : index.Exact g m reach)
    (hreach : length.nodes ≤ reach.nodes + 1)
    (hpaths : (search g m index length starts ends sink).2 = .ok paths) {p : MetaPath} :
    p ∈ paths ↔ ∃ v ∈ starts, ∃ as, IsWalk g m v as ∧ as.length ≤ length.nodes - 1
      ∧ endOf v as ∈ ends ∧ traceOf g m v as = some p.tokens := by
  obtain ⟨wanted, hwanted, hmem⟩ := mem_search hpaths
  have hplain : Found g m index wanted length starts p ↔
      Found g m .empty wanted length starts p :=
    ⟨fun hfound => hfound.of_exact hexact, fun hfound => hfound.to_exact hexact hreach⟩
  rw [hmem, hplain, found_iff hwanted, walked_or_spliced_empty]

/-- What is found from the one end is found backwards from the other. -/
theorem Mirrored.reverse_mem_search (h : Mirrored g g') (hexact : index.Exact g m reach)
    (hexact' : index'.Exact g' m reach') (hreach : length.nodes ≤ reach.nodes + 1)
    (hreach' : length.nodes ≤ reach'.nodes + 1)
    (hpaths : (search g m index length starts ends sink).2 = .ok paths)
    (hpaths' : (search g' m index' length ends starts sink').2 = .ok paths') {p : MetaPath}
    (hp : p ∈ paths) : p.reverse ∈ paths' := by
  rw [mem_search_exact_iff hexact' hreach' hpaths']
  exact h.exists_walk_reverse ((mem_search_exact_iff hexact hreach hpaths).1 hp)

end

/-- **A search finds the same paths from the other end.**  An index is precomputed for some
nodes of a network under a direction and another one for any other nodes under the reverse of it.
When a search from some nodes to others with the one index and the search from the others to the
first with the other index both succeed, each has the reversals of the paths of the other. -/
theorem Network.Built.search_reverse {n : Network} (h : n.Built) (m : Mapping) (d : Direction)
    {length reach reach' : PathLength} (hreach : length.nodes ≤ reach.nodes + 1)
    (hreach' : length.nodes ≤ reach'.nodes + 1) {hubs hubs' : List NodeId} {index index' : HubIndex}
    (hindex : HubIndex.Precomputed (n.withDirection d).view m reach hubs index)
    (hindex' : HubIndex.Precomputed (n.withDirection d.reverse).view m reach' hubs' index')
    {starts ends : List NodeId} {sink sink' : Sink} {paths paths' : PathSet}
    (hpaths : (search (n.withDirection d).view m index length starts ends sink).2 = .ok paths)
    (hpaths' : (search (n.withDirection d.reverse).view m index' length ends starts sink').2
      = .ok paths') (p : MetaPath) :
    p ∈ paths ↔ p.reverse ∈ paths' := by
  constructor
  · intro hp
    exact (h.mirrored d).reverse_mem_search hindex.exact hindex'.exact hreach hreach' hpaths hpaths' hp
  · intro hp
    have hback := (h.mirrored d).symm.reverse_mem_search hindex'.exact hindex.exact hreach' hreach
      hpaths' hpaths hp
    rwa [MetaPath.reverse_reverse] at hback

/-- From node 1 of `twins` over node 2, which is indexed, to node 1 again and from there to node 2;
and the other way round with an index for node 1. -/
theorem Network.Built.search_reverse_twins :
    ∃ index index' paths paths',
      HubIndex.Precomputed (twins.withDirection .both).view twinLabels ⟨3, by decide, by decide⟩ [2]
        index
      ∧ HubIndex.Precomputed (twins.withDirection .both).view twinLabels ⟨4, by decide, by decide⟩
        [1] index'
      ∧ (search (twins.withDirection .both).view twinLabels index ⟨4, by decide, by decide⟩ [1] [2]
        .unlimited).2 = .ok paths
      ∧ (search (twins.withDirection .both).view twinLabels index' ⟨4, by decide, by decide⟩ [2] [1]
        .unlimited).2 = .ok paths'
      ∧ ⟨[0, 0, 1, 0, 0, 0, 1], rfl⟩ ∈ paths ∧ ⟨[1, 0, 0, 0, 1, 0, 0], rfl⟩ ∈ paths' := by
  obtain ⟨index, hindex⟩ := HubIndex.exists_precomputed (twins.withDirection .both).view twinLabels
    ⟨3, by decide, by decide⟩ [2]
  obtain ⟨index', hindex'⟩ := HubIndex.exists_precomputed (twins.withDirection .both).view twinLabels
    ⟨4, by decide, by decide⟩ [1]
  have hok : (search (twins.withDirection .both).view twinLabels .empty ⟨4, by decide, by decide⟩
      [1] [2] .unlimited).2.toOption.any
        (fun paths => paths.contains ⟨[0, 0, 1, 0, 0, 0, 1], rfl⟩) = true := by decide +kernel
  have hok' : (search (twins.withDirection .both).view twinLabels .empty ⟨4, by decide, by decide⟩
      [2] [1] .unlimited).2.toOption.isSome = true := by decide +kernel
  obtain ⟨paths, hplain, hmem⟩ := (Option.any_eq_true _ _).1 hok
  obtain ⟨paths', hplain'⟩ := Option.isSome_iff_exists.1 hok'
  -- with the indexes the searches succeed because they do without
  have hpaths := (search_exact_eq_ok_iff hindex.exact (by decide) Sink.unlimited_accepting
    Sink.unlimited_accepting).2 (toOption_eq_some_iff.1 hplain)
  have hpaths' := (search_exact_eq_ok_iff hindex'.exact (by decide) Sink.unlimited_accepting
    Sink.unlimited_accepting).2 (toOption_eq_some_iff.1 hplain')
  have hmem : (⟨[0, 0, 1, 0, 0, 0, 1], rfl⟩ : MetaPath) ∈ paths := hmem
  refine ⟨index, index', paths, paths', hindex, hindex', hpaths, hpaths', hmem, ?_⟩
  exact (Network.built_twins.search_reverse twinLabels .both (by decide) (by decide) hindex hindex'
    hpaths hpaths' _).1 hmem

end LabelWalks
